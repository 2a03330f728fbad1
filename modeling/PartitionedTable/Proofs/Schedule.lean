import PartitionedTable.Proofs.Manifests

/-!
Answers do not depend on how tasks are scheduled. Two jobs agree when in any two worlds both give
the same result, up to a relation on results, or both fail. A batch of steady tasks agrees with the
same tasks in another order, on other slots and finishing in another order; agreement passes through
the rounds of a walk, whose frontiers are permutations of each other.
-/

namespace PartitionedTable

namespace Engine

variable {σ ε ι ο : Type} {crash : ε} {task : ι → Work σ ε ο} {items items' : List ι}

/-- If a task does not succeed, the batch fails with an error that its tasks know. -/
theorem map_failed_known {known : ε → Prop} (knownCrash : known crash) {ending : ι → Outcome ε ο}
    (answers : ∀ item, (task item).EndsIn (ending item))
    (fails : ∀ item, (task item).FailsOnly known) (bad : ∃ item ∈ items, ¬ (ending item).Succeeds)
    (order : Order) (parallelism : Nat) (state : σ) :
    ∃ error, (map crash task order parallelism items state).1 = .failed error ∧ known error := by
  obtain ⟨item, halt, _, blamed, outcome, _⟩ :=
    map_failed crash order parallelism state (fun item _ => answers item) bad
  refine ⟨_, outcome, ?_⟩
  rcases Outcome.halt?_eq_some_iff.mp blamed with ⟨error, ended, rfl⟩ | ⟨_, rfl⟩
  · exact fails item state error ((answers item state).trans ended)
  · exact knownCrash

/-- The same tasks in another order, under any two schedules: the outputs are the same up to their
order, or both batches fail with errors of their tasks. -/
theorem map_agree {known : ε → Prop} (knownCrash : known crash) (steady : ∀ item, (task item).Steady)
    (fails : ∀ item, (task item).FailsOnly known) (same : items.Perm items')
    (order order' : Order) (parallelism parallelism' : Nat) (state state' : σ) :
    (∃ outputs outputs', (map crash task order parallelism items state).1 = .done outputs
        ∧ (map crash task order' parallelism' items' state').1 = .done outputs'
        ∧ outputs.Perm outputs')
      ∨ ∃ error error', (map crash task order parallelism items state).1 = .failed error
        ∧ (map crash task order' parallelism' items' state').1 = .failed error'
        ∧ known error ∧ known error' := by
  choose ending answers using steady
  by_cases good : ∀ item ∈ items, (ending item).Succeeds
  · have good' : ∀ item ∈ items', (ending item).Succeeds :=
      fun item member => good item (same.symm.subset member)
    obtain ⟨outputs, finished, outcome, _, chosen, values⟩ :=
      map_done crash order parallelism state (fun item _ => answers item) good
    obtain ⟨outputs', finished', outcome', _, chosen', values'⟩ :=
      map_done crash order' parallelism' state' (fun item _ => answers item) good'
    refine .inl ⟨outputs, outputs', outcome, outcome', ?_⟩
    rw [← List.map_perm_map_iff (Outcome.done_injective ε ο), values, values']
    exact ((chosen.trans same).trans chosen'.symm).map ending
  · have bad : ∃ item ∈ items, ¬ (ending item).Succeeds := by
      simpa only [not_forall, exists_prop] using good
    have bad' : ∃ item ∈ items', ¬ (ending item).Succeeds := by
      obtain ⟨item, member, fails⟩ := bad
      exact ⟨item, same.subset member, fails⟩
    obtain ⟨error, outcome, told⟩ := map_failed_known knownCrash answers fails bad order parallelism state
    obtain ⟨error', outcome', told'⟩ :=
      map_failed_known knownCrash answers fails bad' order' parallelism' state'
    exact .inr ⟨error, error', outcome, outcome', told, told'⟩

end Engine

namespace Table

variable {α β : Type}

/-- Two ends of jobs that give the same result or both fail. Running out of rounds is told apart
from every other failure. -/
def Alike (same : α → α → Prop) (left right : Outcome TableError α) : Prop :=
  (∃ result result', left = .done result ∧ right = .done result' ∧ same result result')
    ∨ ∃ error error', left = .failed error ∧ right = .failed error'
      ∧ (OfTask error ↔ OfTask error')

/-- Two jobs that end alike in any two worlds. -/
def Agree (same : α → α → Prop) (left right : Job Unit α) : Prop :=
  ∀ world world', Alike same (left world).1 (right world').1

theorem agree_pure {same : α → α → Prop} {result result' : α} (holds : same result result') :
    Agree same (pure result) (pure result') :=
  fun _ _ => .inl ⟨result, result', rfl, rfl, holds⟩

theorem agree_fail {same : α → α → Prop} {error error' : TableError}
    (told : OfTask error ↔ OfTask error') :
    Agree same (Work.fail error) (Work.fail error') :=
  fun _ _ => .inr ⟨error, error', rfl, rfl, told⟩

theorem agree_announce (description description' : String) :
    Agree Eq (announce description) (announce description') :=
  fun _ _ => .inl ⟨(), (), rfl, rfl, rfl⟩

theorem Agree.bind {same : α → α → Prop} {same' : β → β → Prop} {left right : Job Unit α}
    {next next' : α → Job Unit β} (begins : Agree same left right)
    (later : ∀ result result', same result result' → Agree same' (next result) (next' result')) :
    Agree same' (left >>= next) (right >>= next') := by
  intro world world'
  have alike := begins world world'
  rw [Work.bind_apply, Work.bind_apply]
  generalize left world = ended at alike
  generalize right world' = ended' at alike
  obtain ⟨outcome, after⟩ := ended
  obtain ⟨outcome', after'⟩ := ended'
  rcases alike with ⟨result, result', rfl, rfl, holds⟩ | ⟨error, error', rfl, rfl, told⟩
  · exact later result result' holds after after'
  · exact .inr ⟨error, error', rfl, rfl, told⟩

/-- The same table, with other options and rounds and with tasks that finish in another order. -/
def rescheduled {μ : Type} (table : Table μ) (options : ListingOptions)
    (order : Nat → Engine.Order) (rounds : Nat) : Table μ :=
  { table with options, order, rounds }

section Batches

variable {ι ο : Type} (table table' : Table Unit) {items items' : List ι}

theorem batch_agree {task : ι → Job Unit ο} (steady : ∀ item, (task item).Steady)
    (fails : ∀ item, (task item).FailsOnly OfTask) (same : items.Perm items')
    (number number' : Nat) :
    Agree List.Perm (table.batch number task items) (table'.batch number' task items') := by
  intro world world'
  rcases Engine.map_agree ofTask_taskFailed steady fails same (table.order number)
    (table'.order number') (table.options.budget items.length)
    (table'.options.budget items'.length) world world' with
    ⟨outputs, outputs', outcome, outcome', chosen⟩ | ⟨error, error', outcome, outcome', told, told'⟩
  · exact .inl ⟨outputs, outputs', outcome, outcome', chosen⟩
  · exact .inr ⟨error, error', outcome, outcome', iff_of_true told told'⟩

theorem batchFlat_agree {task : ι → Job Unit (List ο)} (steady : ∀ item, (task item).Steady)
    (fails : ∀ item, (task item).FailsOnly OfTask) (same : items.Perm items')
    (number number' : Nat) :
    Agree List.Perm (table.batchFlat number task items) (table'.batchFlat number' task items') := by
  refine (batch_agree table table' steady fails same number number').bind ?_
  exact fun lists lists' chosen => agree_pure chosen.flatten

end Batches

section Failures

variable {ι ο : Type} (table : Table Unit) {items : List ι}

theorem batch_failed {task : ι → Job Unit ο} (steady : ∀ item, (task item).Steady)
    (fails : ∀ item, (task item).FailsOnly OfTask)
    (bad : ∃ item ∈ items, ∃ outcome, ¬ outcome.Succeeds ∧ (task item).EndsIn outcome)
    (number : Nat) (world : World Unit) :
    ∃ error, (table.batch number task items world).1 = .failed error ∧ OfTask error := by
  choose ending answers using steady
  refine Engine.map_failed_known ofTask_taskFailed answers fails ?_ _ _ world
  obtain ⟨item, member, outcome, ended, answered⟩ := bad
  refine ⟨item, member, ?_⟩
  rwa [← answers item world, answered world]

theorem batchFlat_failed {task : ι → Job Unit (List ο)} (steady : ∀ item, (task item).Steady)
    (fails : ∀ item, (task item).FailsOnly OfTask)
    (bad : ∃ item ∈ items, ∃ outcome, ¬ outcome.Succeeds ∧ (task item).EndsIn outcome)
    (number : Nat) (world : World Unit) :
    ∃ error, (table.batchFlat number task items world).1 = .failed error ∧ OfTask error := by
  obtain ⟨error, ended, told⟩ := batch_failed table steady fails bad number world
  refine ⟨error, ?_, told⟩
  have failed : (Engine.map .taskFailed task (table.order number)
      (table.options.budget items.length) items world).1 = .failed error := ended
  unfold batchFlat
  rw [Engine.flatMap_apply, failed]
  rfl

end Failures

/-- Two walks that found the same partitions. -/
def SameFindings (rounds rounds' : List Round) : Prop :=
  (rounds.flatMap Round.partitions).Perm (rounds'.flatMap Round.partitions)

/-- Walks from permuted frontiers agree: each round permutes the outcomes, hence the next
frontier, and the induction goes over the rounds that are left. -/
theorem walk_agree (table : Table Unit) (options : ListingOptions) (order : Nat → Engine.Order)
    (rounds : Nat) (status : String) (limit : Nat) {frontier frontier' : List Visit}
    (same : frontier.Perm frontier') (number number' : Nat) :
    Agree SameFindings (table.walk status limit number frontier)
      ((table.rescheduled options order rounds).walk status limit number' frontier') := by
  induction limit generalizing frontier frontier' number number' with
  | zero =>
      cases frontier with
      | nil =>
          obtain rfl := same.nil_eq
          rw [walk, walk]
          exact agree_pure (.refl _)
      | cons visit others =>
          cases frontier' with
          | nil => exact absurd same.eq_nil (List.cons_ne_nil _ _)
          | cons visit' others' =>
              rw [walk, walk]
              exact agree_fail Iff.rfl
  | succ limit ih =>
      cases frontier with
      | nil =>
          obtain rfl := same.nil_eq
          rw [walk, walk]
          exact agree_pure (.refl _)
      | cons visit others =>
          cases frontier' with
          | nil => exact absurd same.eq_nil (List.cons_ne_nil _ _)
          | cons visit' others' =>
              rw [walk, walk]
              refine (agree_announce status status).bind fun _ _ _ => ?_
              refine (batchFlat_agree table (table.rescheduled options order rounds)
                table.classify_steady (classify_failsOnly table) same number number').bind ?_
              intro findings findings' chosen
              refine (ih (chosen.filterMap Finding.visit?) (number + 1) (number' + 1)).bind ?_
              intro later later' found
              exact agree_pure ((chosen.filterMap Finding.partition?).append found)

section Rounds

variable {μ : Type}

/-- What `longer` does wherever `shorter` does not run out of rounds: the same. -/
def Continues (shorter longer : Job μ α) : Prop :=
  ∀ world, (shorter world).1 ≠ .failed .unfinished → longer world = shorter world

theorem continues_refl (job : Job μ α) : Continues job job := fun _ _ => rfl

theorem Continues.bind {shorter longer : Job μ α} {next next' : α → Job μ β}
    (begins : Continues shorter longer) (later : ∀ value, Continues (next value) (next' value)) :
    Continues (shorter >>= next) (longer >>= next') := by
  intro world ended
  have first : (shorter world).1 ≠ .failed .unfinished := by
    intro equal
    apply ended
    rw [Work.bind_of_failed equal]
  rw [Work.bind_apply] at ended
  rw [Work.bind_apply, Work.bind_apply, begins world first]
  generalize shorter world = reached at ended
  obtain ⟨outcome, after⟩ := reached
  cases outcome with
  | done value => exact later value after ended
  | failed error => rfl
  | crashed => rfl

/-- The same table with another bound on the rounds of its walks. -/
def within (table : Table μ) (rounds : Nat) : Table μ := { table with rounds }

/-- A walk that did not run out of rounds goes as before when there are more of them. -/
theorem walk_continues (table : Table μ) (rounds rounds' : Nat) (status : String)
    {limit limit' : Nat} (more : limit ≤ limit') (number : Nat) (frontier : List Visit) :
    Continues ((table.within rounds).walk status limit number frontier)
      ((table.within rounds').walk status limit' number frontier) := by
  induction limit generalizing limit' number frontier with
  | zero =>
      cases frontier with
      | nil =>
          rw [walk, walk]
          exact continues_refl _
      | cons visit others => exact fun world ended => absurd rfl ended
  | succ limit ih =>
      obtain ⟨limit', rfl⟩ : ∃ fewer, limit' = fewer + 1 := ⟨limit' - 1, by omega⟩
      cases frontier with
      | nil =>
          rw [walk, walk]
          exact continues_refl _
      | cons visit others =>
          rw [walk, walk]
          refine (continues_refl _).bind fun _ => (continues_refl _).bind fun findings => ?_
          refine (ih (by omega) (number + 1) _).bind ?_
          exact fun later => continues_refl _

theorem search_continues (table : Table μ) {rounds rounds' : Nat} (more : rounds ≤ rounds')
    (spellings : List String) :
    Continues ((table.within rounds).search spellings) ((table.within rounds').search spellings) := by
  unfold search
  cases spellings with
  | nil => exact continues_refl _
  | cons spelling others =>
      refine (continues_refl _).bind fun _ => ?_
      exact walk_continues table rounds rounds' _ more 1 _

theorem partitionsBelow_continues (table : Table μ) {rounds rounds' : Nat} (more : rounds ≤ rounds')
    (spellings : List String) :
    Continues ((table.within rounds).partitionsBelow spellings)
      ((table.within rounds').partitionsBelow spellings) :=
  (table.search_continues more spellings).bind fun _ => continues_refl _

/-- What finding the partitions comes to when there are rounds enough: the end of a walk that is
not bounded at all. -/
def Finds (table : Table μ) (spellings : List String) (world : World μ)
    (outcome : Outcome TableError (List String)) : Prop :=
  outcome ≠ .failed .unfinished ∧ ∃ enough, ∀ rounds, enough ≤ rounds →
    ((table.within rounds).partitionsBelow spellings world).1 = outcome

/-- One bound under which the walk ends is enough. -/
theorem finds_of_ended {table : Table μ} {spellings : List String} {world : World μ} {rounds : Nat}
    (ended : ((table.within rounds).partitionsBelow spellings world).1 ≠ .failed .unfinished) :
    table.Finds spellings world ((table.within rounds).partitionsBelow spellings world).1 := by
  refine ⟨ended, rounds, ?_⟩
  intro rounds' more
  rw [partitionsBelow_continues table more spellings world ended]

end Rounds

/-- Deduplicated lists of the same members are permutations of each other. -/
theorem eraseDups_perm {names names' : List String} (same : ∀ name, name ∈ names ↔ name ∈ names') :
    names.eraseDups.Perm names'.eraseDups := by
  rw [List.perm_ext_iff_of_nodup (nodup_eraseDups _) (nodup_eraseDups _)]
  intro name
  rw [List.mem_eraseDups, List.mem_eraseDups, same]

section Answers

variable (table : Table Unit) (options : ListingOptions) (order : Nat → Engine.Order) (rounds : Nat)

theorem partitionsBelow_agree (spellings : List String) :
    Agree List.Perm ((table.within rounds).partitionsBelow spellings)
      ((table.rescheduled options order rounds).partitionsBelow spellings) := by
  have searched : Agree SameFindings ((table.within rounds).search spellings)
      ((table.rescheduled options order rounds).search spellings) := by
    unfold search
    cases spellings with
    | nil => exact agree_pure (.refl _)
    | cons spelling others =>
        refine (batch_agree _ _ (table.within rounds).checkSeed_steady
          (checkSeed_failsOnly (table.within rounds)) (.refl _) 0 0).bind fun _ _ _ => ?_
        exact walk_agree (table.within rounds) options order rounds _ rounds (.refl _) 1 1
  refine searched.bind ?_
  intro found found' same
  exact agree_pure (eraseDups_perm fun name => same.mem_iff)

theorem descendants_agree (levels : Nat) {frontier frontier' : List Path}
    (same : frontier.Perm frontier') (number number' : Nat) :
    Agree List.Perm (table.descendants levels number frontier)
      ((table.rescheduled options order rounds).descendants levels number' frontier') := by
  induction levels generalizing frontier frontier' number number' with
  | zero => exact agree_pure same
  | succ levels ih =>
      cases frontier with
      | nil =>
          obtain rfl := same.nil_eq
          exact agree_pure same
      | cons directory others =>
          cases frontier' with
          | nil => exact absurd same.eq_nil (List.cons_ne_nil _ _)
          | cons directory' others' =>
              rw [descendants, descendants]
              refine (batchFlat_agree table (table.rescheduled options order rounds)
                table.childrenByName_steady (childrenByName_failsOnly table) same number
                number').bind ?_
              exact fun children children' chosen => ih chosen (number + 1) (number' + 1)

/-- Naming directories of which each has a name gives their names, and makes no call. -/
theorem mapM_partitionName_does {μ : Type} (table : Table μ) {directories : List Path}
    (below : ∀ directory ∈ directories, ∃ name, Path.relativeName? table.root directory = some name) :
    (directories.mapM table.partitionName).Does
      (directories.map fun directory => (Path.relativeName? table.root directory).getD "") [] := by
  have each : ∀ directory ∈ directories, (table.partitionName directory).Does
      ((Path.relativeName? table.root directory).getD "") [] := by
    intro directory member
    obtain ⟨name, named⟩ := below directory member
    rw [named]
    exact partitionName_does table named
  have silent : directories.flatMap (fun _ => ([] : List Call)) = [] := by simp
  rw [← silent]
  exact Work.does_mapM each

/-- A directory outside of the root fails the naming, and the error names such a directory. -/
theorem mapM_partitionName_failed {μ : Type} (table : Table μ) {directories : List Path}
    (outside : ∃ directory ∈ directories, Path.relativeName? table.root directory = none) :
    ∃ directory ∈ directories, Path.relativeName? table.root directory = none
      ∧ (directories.mapM table.partitionName).EndsIn (.failed (.outside directory)) := by
  induction directories with
  | nil =>
      obtain ⟨directory, member, _⟩ := outside
      cases member
  | cons directory others ih =>
      rw [List.mapM_cons]
      cases named : Path.relativeName? table.root directory with
      | none =>
          refine ⟨directory, List.mem_cons_self, named, Work.EndsIn.bind_failed ?_ _⟩
          unfold partitionName
          rw [named]
          exact Work.endsIn_fail _
      | some name =>
          obtain ⟨other, member, unnamed⟩ := outside
          have later : other ∈ others := by
            rcases List.mem_cons.mp member with rfl | member
            · rw [named] at unnamed
              cases unnamed
            · exact member
          obtain ⟨culprit, member, unnamed, ended⟩ := ih ⟨other, later, unnamed⟩
          refine ⟨culprit, List.mem_cons_of_mem _ member, unnamed, ?_⟩
          exact (partitionName_endsIn table named).bind (ended.bind_failed _)

theorem mapM_partitionName_agree {directories directories' : List Path}
    (same : directories.Perm directories') :
    Agree List.Perm (directories.mapM table.partitionName)
      (directories'.mapM (table.rescheduled options order rounds).partitionName) := by
  intro world world'
  by_cases below : ∀ directory ∈ directories,
      ∃ name, Path.relativeName? table.root directory = some name
  · refine .inl ⟨_, _, (mapM_partitionName_does table below world).1,
      (mapM_partitionName_does (table.rescheduled options order rounds) ?_ world').1, same.map _⟩
    exact fun directory member => below directory (same.symm.subset member)
  · have outside : ∃ directory ∈ directories, Path.relativeName? table.root directory = none := by
      simpa only [not_forall, ← Option.isSome_iff_exists, Option.not_isSome_iff_eq_none,
        exists_prop] using below
    have outside' : ∃ directory ∈ directories', Path.relativeName? table.root directory = none := by
      obtain ⟨directory, member, unnamed⟩ := outside
      exact ⟨directory, same.subset member, unnamed⟩
    obtain ⟨culprit, _, _, ended⟩ := mapM_partitionName_failed table outside
    obtain ⟨culprit', _, _, ended'⟩ :=
      mapM_partitionName_failed (table.rescheduled options order rounds) outside'
    exact .inr ⟨_, _, ended world, ended' world', iff_of_true (fun equal => by cases equal)
      fun equal => by cases equal⟩

theorem datePartitions_agree :
    Agree List.Perm table.datePartitions
      (table.rescheduled options order rounds).datePartitions := by
  refine (agree_announce _ _).bind fun _ _ _ => ?_
  refine (descendants_agree table options order rounds dateDepth (.refl _) 0 0).bind ?_
  intro directories directories' same
  refine (mapM_partitionName_agree table options order rounds same).bind ?_
  exact fun names names' same => agree_pure (eraseDups_perm fun name => same.mem_iff)

/-- The same map from spellings to files: no spelling has two entries. -/
def SameManifests (manifests manifests' : List (String × List FileEntry)) : Prop :=
  manifests.Perm manifests' ∧ (manifests.map Prod.fst).Nodup

theorem filesOfEach_agree {spellings spellings' : List String}
    (same : ∀ spelling, spelling ∈ spellings ↔ spelling ∈ spellings') :
    Agree SameManifests (table.filesOfEach spellings)
      ((table.rescheduled options order rounds).filesOfEach spellings') := by
  have distinct := eraseDups_perm same
  unfold filesOfEach
  dsimp only
  by_cases empty : spellings.eraseDups = []
  · have empty' : spellings'.eraseDups = [] := by
      rw [empty] at distinct
      exact distinct.nil_eq.symm
    rw [empty, empty']
    exact agree_pure ⟨.refl _, List.nodup_nil⟩
  · have filled : ¬ spellings.eraseDups.isEmpty = true := by
      rwa [List.isEmpty_iff]
    have filled' : ¬ spellings'.eraseDups.isEmpty = true := by
      rw [List.isEmpty_iff]
      intro empty'
      rw [empty'] at distinct
      exact empty distinct.eq_nil
    rw [if_neg filled, if_neg filled']
    refine (agree_announce _ _).bind fun _ _ _ => ?_
    intro world world'
    rcases batch_agree table (table.rescheduled options order rounds) table.manifest_steady
      (manifest_failsOnly table) distinct 0 0 world world' with
      ⟨manifests, manifests', ended, ended', chosen⟩ | fails
    · refine .inl ⟨manifests, manifests', ended, ended', chosen, ?_⟩
      obtain ⟨turn, entries, perm, -, rfl, -⟩ := table.batch_manifest_done ended world
      rw [manifests_keys]
      exact perm.nodup_iff.mpr (nodup_eraseDups spellings)
    · exact .inr fails

end Answers

/-- Finding partitions and listing files do not depend on scheduling. On a store that remembers
nothing, under any two bounds on the tasks alive at once and any two orders of completion, a search
whose walk ends finds the same partitions both times or fails both times; so does the search three
levels down, and a listing of several partitions gives the same map from spellings to files, in
whatever order and however often they are spelled. -/
theorem answers_independent_of_schedule (head : Path → Outcome StoreError Unit)
    (list : Path → Outcome StoreError Listing) (root : Path) (options options' : ListingOptions)
    (order order' : Nat → Engine.Order) (rounds rounds' : Nat) (world world' : World Unit) :
    let left : Table Unit := { store := Store.stateless head list, root, options, rounds, order }
    let right : Table Unit :=
      { store := Store.stateless head list, root, options := options', rounds := rounds',
        order := order' }
    (∀ spellings outcome, left.Finds spellings world outcome →
      ∃ outcome', right.Finds spellings world' outcome' ∧ Alike List.Perm outcome outcome')
    ∧ Alike List.Perm (left.datePartitions world).1 (right.datePartitions world').1
    ∧ ∀ spellings spellings', (∀ spelling, spelling ∈ spellings ↔ spelling ∈ spellings') →
      Alike SameManifests (left.filesOfEach spellings world).1
        (right.filesOfEach spellings' world').1 := by
  intro left right
  refine ⟨?_, datePartitions_agree left options' order' rounds' world world', ?_⟩
  · intro spellings outcome found
    obtain ⟨answered, enough, settled⟩ := found
    -- The bound on the rounds that is enough for one schedule is enough for the other.
    have alike := partitionsBelow_agree left options' order' enough spellings world world'
    rw [settled enough (Nat.le_refl enough)] at alike
    have ended : ((right.within enough).partitionsBelow spellings world').1
        ≠ .failed .unfinished := by
      intro equal
      rcases alike with ⟨_, names, _, outcome', _⟩ | ⟨error, error', rfl, outcome', told⟩
      · cases outcome'.symm.trans equal
      · have same : error' = .unfinished := Outcome.failed.inj (outcome'.symm.trans equal)
        exact told.mp (fun unfinished => answered (by rw [unfinished])) same
    exact ⟨_, finds_of_ended ended, alike⟩
  · intro spellings spellings' same
    exact filesOfEach_agree left options' order' rounds' same world world'

/-- A store where every directory holds `a` and `b`, and where what lies one level down is marked:
one task at a time finds what two at a time find when the younger finishes first. -/
theorem answers_independent_of_schedule_one_level_down :
    let head : Path → Outcome StoreError Unit := fun path =>
      if path.segments.length = 2 then .done () else .failed (.notFound "" "")
    let list : Path → Outcome StoreError Listing := fun path =>
      .done { directories := [path.child "a", path.child "b"], files := [] }
    let left : Table Unit :=
      { store := Store.stateless head list, options := { parallelism := 2 }, rounds := 0,
        order := fun _ _ => 1 }
    let right : Table Unit :=
      { store := Store.stateless head list, options := { parallelism := 0 }, rounds := 0 }
    left.Finds [""] { memory := () } (.done ["b", "a"])
      ∧ ∃ names, right.Finds [""] { memory := () } (.done names) ∧ ["b", "a"].Perm names := by
  intro head list left right
  have found : left.Finds [""] { memory := () } (.done ["b", "a"]) := by
    have ended : ((left.within 2).partitionsBelow [""] { memory := () }).1 = .done ["b", "a"] := by
      decide +kernel
    have finished : ((left.within 2).partitionsBelow [""] { memory := () }).1
        ≠ .failed .unfinished := by
      rw [ended]
      exact fun equal => by cases equal
    exact ended ▸ finds_of_ended finished
  obtain ⟨outcome', found', alike⟩ :=
    (answers_independent_of_schedule head list Path.top { parallelism := 2 } { parallelism := 0 }
      (fun _ _ => 1) (fun _ => Engine.oldestFirst) 0 0 { memory := () } { memory := () }).1
      [""] _ found
  refine ⟨found, ?_⟩
  rcases alike with ⟨names, names', equal, rfl, same⟩ | ⟨error, _, equal, _⟩
  · cases equal
    exact ⟨names', found', same⟩
  · cases equal

end Table

end PartitionedTable
