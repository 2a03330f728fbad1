import PartitionedTable.Proofs.Lockstep
import PartitionedTable.Proofs.Status

/-!
Whole sessions. The answer to an operation is the same in all worlds (`Operation.perform_steady`), so it
does not depend on what was asked before. With each answer goes the status reported last, which is the
last one that an operation of the session set (`Table.lastStatus`).
-/

namespace PartitionedTable

namespace Work

variable {σ ε α β ι : Type}

theorem Steady.matches {work : Work σ ε α} (steady : work.Steady) : work.Matches Eq work := by
  obtain ⟨outcome, ended⟩ := steady
  exact ended.matches ended (Outcome.related_refl outcome)

theorem Matches.steady {work : Work σ ε α} (alike : work.Matches Eq work) (state : σ) :
    work.Steady :=
  ⟨(work state).1, fun other => (alike other state).eq⟩

theorem Steady.map {work : Work σ ε α} (steady : work.Steady) (change : α → β) :
    (change <$> work).Steady := by
  obtain ⟨outcome, ended⟩ := steady
  exact (ended.map change).steady

theorem steady_mapM {task : ι → Work σ ε α} (steady : ∀ item, (task item).Steady)
    (items : List ι) : (items.mapM task).Steady := by
  induction items with
  | nil => exact (endsIn_pure []).steady
  | cons item items ih =>
      rw [List.mapM_cons]
      exact (steady item).bind fun value => ih.map (value :: ·)

end Work

namespace Table

variable {ι ο : Type} (table : Table Unit) {items : List ι}

theorem announce_steady (description : String) : (announce description : Job Unit Unit).Steady :=
  ⟨.done (), fun _ => rfl⟩

/-- Under one schedule a batch of steady tasks always ends the same. -/
theorem batch_steady {task : ι → Job Unit ο} (steady : ∀ item, (task item).Steady) (number : Nat) :
    (table.batch number task items).Steady := by
  have alike := Engine.map_matches TableError.taskFailed (table.order number)
    (table.options.budget items.length) fun item (_ : item ∈ items) => (steady item).matches
  rw [List.forall₂_eq_eq_eq] at alike
  exact alike.steady { memory := () }

theorem batchFlat_steady {task : ι → Job Unit (List ο)} (steady : ∀ item, (task item).Steady)
    (number : Nat) : (table.batchFlat number task items).Steady :=
  (table.batch_steady steady number).map _

theorem walk_steady (description : String) (limit number : Nat) (frontier : List Visit) :
    (table.walk description limit number frontier).Steady := by
  induction limit, number, frontier using walk.induct with
  | case1 limit number =>
      rw [walk]
      exact (Work.endsIn_pure []).steady
  | case2 number visit others =>
      rw [walk]
      exact (Work.endsIn_fail _).steady
  | case3 limit number visit others ih =>
      rw [walk]
      refine (announce_steady description).bind fun _ => ?_
      refine (table.batchFlat_steady table.classify_steady number).bind fun findings => ?_
      exact (ih findings).map (Round.mk (visit :: others) findings :: ·)

theorem partitionsBelow_steady (spellings : List String) :
    (table.partitionsBelow spellings).Steady := by
  by_cases empty : spellings = []
  · subst empty
    exact (Work.endsIn_pure []).steady
  · unfold partitionsBelow
    rw [table.search_of_ne_nil empty]
    refine Work.Steady.bind ?_ fun rounds => (Work.endsIn_pure _).steady
    exact (table.batch_steady table.checkSeed_steady 0).bind
      fun _ => table.walk_steady _ _ _ _

theorem descendants_steady (levels number : Nat) (frontier : List Path) :
    (table.descendants levels number frontier).Steady := by
  induction levels, number, frontier using descendants.induct with
  | case1 number frontier => exact (Work.endsIn_pure frontier).steady
  | case2 number levels => exact (Work.endsIn_pure []).steady
  | case3 levels number directory others ih =>
      rw [descendants]
      exact (table.batchFlat_steady table.childrenByName_steady number).bind ih

theorem datePartitions_steady : table.datePartitions.Steady := by
  refine (announce_steady _).bind fun _ => ?_
  refine (table.descendants_steady dateDepth 0 [table.root]).bind fun directories => ?_
  exact (Work.steady_mapM table.partitionName_steady directories).map List.eraseDups

theorem partitions_steady : table.partitions.Steady := by
  unfold partitions
  split
  · exact table.datePartitions_steady
  · exact table.partitionsBelow_steady [""]

theorem filesOfEach_steady (spellings : List String) : (table.filesOfEach spellings).Steady := by
  unfold filesOfEach
  dsimp only
  split
  · exact (Work.endsIn_pure []).steady
  · exact (announce_steady _).bind fun _ => table.batch_steady table.manifest_steady 0

end Table

/-- The answer to an operation is the same in all worlds. -/
theorem Operation.perform_steady (table : Table Unit) (operation : Operation) :
    (operation.perform table).Steady := by
  cases operation with
  | partitions => exact (table.partitions_steady.mapError Failure.table).map Answer.names
  | partitionsBelow spellings =>
      exact ((table.partitionsBelow_steady spellings).mapError Failure.table).map Answer.names
  | files spelling => exact ((table.files_steady spelling).mapError Failure.table).map Answer.entries
  | filesOfEach spellings =>
      exact ((table.filesOfEach_steady spellings).mapError Failure.table).map Answer.manifests
  | query question => exact (Work.endsIn_fail _).steady
  | supportsQueries => exact (Work.endsIn_pure _).steady
  | reset => exact (Work.endsIn_pure _).steady
  | close => exact (Work.endsIn_pure _).steady
  | directoriesIn directory excluded =>
      exact ((table.store.directoriesIn_steady directory _).mapError Failure.storage).map Answer.paths
  | hasMarker directory =>
      exact ((table.store.holdsOneOf_steady directory _).mapError Failure.storage).map Answer.truth
  | dataFilesIn directory =>
      exact ((table.store.dataFilesIn_steady directory).mapError Failure.storage).map Answer.entries
  | directoryExists directory =>
      exact ((table.store.directoryExists_steady directory).mapError Failure.storage).map Answer.truth

namespace Table

/-- An operation, and the order in which the tasks of its batches finish. -/
structure Step where
  operation : Operation
  order : Nat → Engine.Order

section Sessions

variable {μ : Type}

/-- Answers the operation of a step under its own schedule. -/
def Step.perform (step : Step) (table : Table μ) : Work (World μ) Failure Answer :=
  step.operation.perform { table with order := step.order }

/-- Answers operations one after another, each under a schedule of its own; with each answer goes the
status reported last. -/
def sessionUnder (table : Table μ) :
    List Step → World μ → List (Outcome Failure Answer × Option JobStatus)
  | [], _ => []
  | step :: others, world =>
      let (outcome, world) := step.perform table world
      (outcome, world.status) :: table.sessionUnder others world

theorem session_eq_sessionUnder (table : Table μ) (operations : List Operation) (world : World μ) :
    table.session operations world
      = table.sessionUnder (operations.map fun operation => ⟨operation, table.order⟩) world := by
  induction operations generalizing world with
  | nil => rfl
  | cons operation others ih => exact congrArg (_ :: ·) (ih _)

end Sessions

variable (table : Table Unit)

/-- The status set last by `steps`, or `before` if none of them sets any. -/
def lastStatus (steps : List Step) (before : Option JobStatus) : Option JobStatus :=
  (steps.filterMap fun step => step.operation.status? table).getLast?.or before

theorem lastStatus_cons (step : Step) (others : List Step) (before : Option JobStatus) :
    table.lastStatus (step :: others) before
      = table.lastStatus others ((step.operation.status? table).or before) := by
  unfold lastStatus
  rw [List.filterMap_cons]
  cases step.operation.status? table with
  | none => rfl
  | some status =>
      dsimp only
      rw [List.getLast?_cons, Option.some_or, Option.some_or]
      cases (others.filterMap fun step => step.operation.status? table).getLast? <;> rfl

/-- The schedule has no part in whether an operation sets the status. -/
theorem status?_of_order (operation : Operation) (order : Nat → Engine.Order) :
    operation.status? { table with order } = operation.status? table := by
  cases operation <;> rfl

variable {table}

theorem Step.perform_status (walks : 0 < table.rounds) (step : Step) (world : World Unit) :
    (step.perform table world).2.status = (step.operation.status? table).or world.status := by
  rw [← table.status?_of_order step.operation step.order]
  have rescheduled : 0 < Table.rounds { table with order := step.order } := walks
  exact Operation.perform_status rescheduled step.operation world

/-- What a whole session tells. In it each operation may run under a schedule of its own. With every
answer goes the last status that was set so far, by a search for partitions that starts below all its
spellings and has at least one, by a search three levels down, or by a listing of several partitions, be
they answered or not; all other operations leave the status as it is. And every answer is the one that
the operation has in any other world, whatever was asked before. -/
theorem session_tells_last_status (walks : 0 < table.rounds) (steps : List Step)
    (world world' : World Unit) (position : Nat) :
    (table.sessionUnder steps world)[position]? = steps[position]?.map (fun step =>
        ((step.perform table world').1, table.lastStatus (steps.take (position + 1)) world.status))
      ∧ ∀ operations : List Operation, table.session operations world
        = table.sessionUnder (operations.map fun operation => ⟨operation, table.order⟩) world := by
  refine ⟨?_, fun operations => table.session_eq_sessionUnder operations world⟩
  induction steps generalizing world position with
  | nil => rfl
  | cons step others ih =>
      have answered : (step.perform table world).1 = (step.perform table world').1 :=
        (Operation.perform_steady _ step.operation).endsIn world' world
      have told := step.perform_status walks world
      cases position with
      | zero =>
          change some ((step.perform table world).1, (step.perform table world).2.status) = some _
          rw [answered, told, List.take_succ_cons, table.lastStatus_cons]
          rfl
      | succ position =>
          have later := ih (step.perform table world).2 position
          rw [told] at later
          rw [List.take_succ_cons, table.lastStatus_cons]
          exact later

/-- A listing that fails sets the status, a search that does not start and a close keep it, and a search
that starts and fails sets it anew. -/
theorem session_tells_last_status_past_failures :
    let list : Path → Outcome StoreError Listing := fun path =>
      if path = Path.top then .done { directories := [⟨["a"]⟩, ⟨["b"]⟩], files := [] }
      else .failed (.permissionDenied path.text "")
    let table : Table Unit :=
      { store := Store.stateless (fun _ => .failed (.notFound "" "")) list, rounds := 2 }
    let steps : List Step := [
      ⟨.filesOfEach ["a", "b", "a"], fun _ _ => 1⟩, ⟨.partitionsBelow ["c"], fun _ _ => 0⟩,
      ⟨.close, fun _ _ => 0⟩, ⟨.partitionsBelow ["", ""], fun _ _ => 1⟩]
    let answers := table.sessionUnder steps { memory := () }
    answers[2]? = some (.done .nothing, some (told "Listing all files in 2 partitions"))
      ∧ answers[3]?.map Prod.snd = some (some (told "Listing all partitions with prefix , ")) := by
  intro list table steps answers
  have walks : 0 < table.rounds := by decide
  have law := session_tells_last_status walks steps { memory := () } { memory := () }
  constructor
  · rw [(law 2).1]
    decide +kernel
  · rw [(law 3).1]
    decide +kernel

end Table

end PartitionedTable
